import Mathlib.Data.List.Forall2
import WeakForm.Table.Naming

/-!
# Table names tell tables apart

A table name is read from left to right: a run of digits ends where the next part begins,
since every part starts with an underscore, and the letter after the underscore tells which
part it is. Derivative counts are written without a separator, so a name tells the digits of
all of them, and each count only where its width is known.

* `digits_append` — where a run of digits ends;
* `SameWidths` — the counts that their digits tell;
* `Opens` — the letters that a text may go on with;
* `componentPart_append`, `derivativePart_append`, `averagingPart_append` — one part each;
* `tableName_tells` — the parts of a name;
* `OfPoints.unique` — the number of points at its end.
-/

namespace WeakForm

/-! ## Runs of digits -/

/-- A run of digits ends at the first character that is none. -/
theorem digits_append {stop : Char} (hstop : stop.isDigit = false) {xs xs' ys ys' : List Char}
    (hxs : ∀ c ∈ xs, c.isDigit) (hxs' : ∀ c ∈ xs', c.isDigit)
    (h : xs ++ stop :: ys = xs' ++ stop :: ys') : xs = xs' ∧ ys = ys' := by
  have hend : ∀ zs : List Char, (stop :: zs).takeWhile Char.isDigit = [] := by
    intro zs
    rw [List.takeWhile_cons, hstop, if_neg Bool.false_ne_true]
  have hruns := congrArg (List.takeWhile Char.isDigit) h
  rw [List.takeWhile_append_of_pos hxs, List.takeWhile_append_of_pos hxs', hend, hend,
    List.append_nil, List.append_nil] at hruns
  obtain rfl := hruns
  exact ⟨rfl, List.tail_eq_of_cons_eq (List.append_cancel_left h)⟩

theorem isDigit_of_mem_toString {n : Nat} {c : Char} (h : c ∈ (toString n).toList) : c.isDigit := by
  rw [Nat.toString_eq_repr, Nat.toList_repr] at h
  exact Nat.isDigit_of_mem_toDigits (by decide) (by decide) h

/-- The digits of a number tell the number. -/
theorem toString_nat_injective {n m : Nat} (h : (toString n).toList = (toString m).toList) :
    n = m := by
  rw [Nat.toString_eq_repr, Nat.toString_eq_repr, Nat.toList_repr, Nat.toList_repr] at h
  calc
    n = Nat.ofDigitChars 10 (Nat.toDigits 10 n) 0 := Nat.ofDigitChars_ten_toDigits.symm
    _ = Nat.ofDigitChars 10 (Nat.toDigits 10 m) 0 := by rw [h]
    _ = m := Nat.ofDigitChars_ten_toDigits

/-- The digits of several numbers. -/
def countDigits (counts : List Nat) : List Char :=
  (String.join (counts.map toString)).toList

/-- Counts are written one after the other. -/
theorem countDigits_cons (n : Nat) (counts : List Nat) :
    countDigits (n :: counts) = (toString n).toList ++ countDigits counts := by
  rw [countDigits, countDigits, String.toList_join, String.toList_join, List.map_cons,
    List.flatMap_cons]

/-- Counts are written in digits. -/
theorem isDigit_of_mem_countDigits {counts : List Nat} {c : Char} (h : c ∈ countDigits counts) :
    c.isDigit := by
  induction counts with
  | nil => exact absurd h List.not_mem_nil
  | cons n counts ih =>
    rw [countDigits_cons] at h
    rcases List.mem_append.mp h with h | h
    · exact isDigit_of_mem_toString h
    · exact ih h

/-- Numbers that take as many digits, one by one. -/
def SameWidths (counts counts' : List Nat) : Prop :=
  List.Forall₂ (fun n m => (toString n).length = (toString m).length) counts counts'

theorem SameWidths.refl (counts : List Nat) : SameWidths counts counts :=
  List.forall₂_same.mpr fun _ _ => rfl

/-- Where the widths agree, the numbers are told apart without a separator. -/
theorem SameWidths.eq_of_countDigits {counts counts' : List Nat}
    (hwidths : SameWidths counts counts') (h : countDigits counts = countDigits counts') :
    counts = counts' := by
  induction hwidths with
  | nil => rfl
  | cons hwidth _ ih =>
    rw [countDigits_cons, countDigits_cons] at h
    obtain ⟨hnumber, hrest⟩ := List.append_inj h hwidth
    rw [toString_nat_injective hnumber, ih hrest]

/-- Numbers of one digit have one width. -/
theorem SameWidths.of_le_nine {counts counts' : List Nat} (hlength : counts.length = counts'.length)
    (hc : ∀ n ∈ counts, n ≤ 9) (hc' : ∀ n ∈ counts', n ≤ 9) : SameWidths counts counts' := by
  have hone : ∀ n ≤ 9, (toString n).length = 1 := by
    intro n hn
    rw [← String.length_toList, Nat.toString_eq_repr, Nat.toList_repr,
      Nat.toDigits_of_lt_base (by omega), List.length_singleton]
  refine List.forall₂_iff_zip.mpr ⟨hlength, fun {n m} hmem => ?_⟩
  obtain ⟨hn, hm⟩ := List.of_mem_zip hmem
  rw [hone n (hc n hn), hone m (hc' m hm)]

/-! ## Parts of a name -/

/-- The text starts with an underscore and one of some letters. -/
def Opens (letters text : List Char) : Prop :=
  ∃ c ∈ letters, ∃ rest, text = '_' :: c :: rest

/-- A text opens a part with any larger choice of letters. -/
theorem Opens.mono {letters letters' text : List Char} (h : Opens letters text)
    (hsub : letters ⊆ letters') : Opens letters' text := by
  obtain ⟨c, hc, rest, rfl⟩ := h
  exact ⟨c, hsub hc, rest, rfl⟩

/-- A text with another letter after its underscore is another text. -/
theorem Opens.ne {letters text rest : List Char} {c : Char} (h : Opens letters text)
    (hc : c ∉ letters) : text ≠ '_' :: c :: rest := by
  rintro rfl
  obtain ⟨c', hc', rest', heq⟩ := h
  rw [List.cons.injEq, List.cons.injEq] at heq
  exact hc (heq.2.1 ▸ hc')

/-- The part of a name after the ordinal. -/
def componentPart (component : Option Nat) : List Char :=
  match component with
  | none => []
  | some c => '_' :: 'C' :: (toString c).toList

/-- The part of a name after the component. -/
def derivativePart (frame : Frame) (derivatives : List Nat) : List Char :=
  if derivatives.all (· == 0) then [] else frame.letter.toList ++ countDigits derivatives

/-- The part of a name after the derivative counts. -/
def averagingPart (averaged : Option Averaging) : List Char :=
  ((averaged.map Averaging.suffix).getD "").toList

/-- The end of a name. -/
def pointsPart (entity : EntityType) (points : Nat) : List Char :=
  entity.suffix.toList ++ '_' :: 'Q' :: (toString points).toList

/-- A name is the number of the element, the component, the derivatives, the average and the points.
-/
theorem toList_tableName (ordinal : Nat) (component : Option Nat) (frame : Frame)
    (derivatives : List Nat) (averaged : Option Averaging) (entity : EntityType) (points : Nat) :
    (tableName ordinal component frame derivatives averaged entity points).toList =
      'F' :: 'E' :: ((toString ordinal).toList ++ (componentPart component ++
        (derivativePart frame derivatives ++
          (averagingPart averaged ++ pointsPart entity points)))) := by
  have hderivatives : (if derivatives.all (· == 0) then "" else
      frame.letter ++ String.join (derivatives.map toString)).toList =
        derivativePart frame derivatives := by
    unfold derivativePart
    by_cases hzero : derivatives.all (· == 0)
    · rw [if_pos hzero, if_pos hzero]
      rfl
    · rw [if_neg hzero, if_neg hzero, String.toList_append]
      rfl
  -- the two other parts are strings as they stand
  unfold tableName
  cases component with
  | none =>
    simp only [String.toList_append, hderivatives, List.append_assoc]
    rfl
  | some c =>
    simp only [String.toList_append, hderivatives, List.append_assoc]
    rfl

/-- The part for the points opens with its entity. -/
theorem opens_pointsPart (entity : EntityType) (points : Nat) :
    Opens ['F', 'V', 'Q'] (pointsPart entity points) := by
  cases entity with
  | cell => exact ⟨'Q', by decide, _, rfl⟩
  | facet => exact ⟨'F', by decide, _, rfl⟩
  | vertex => exact ⟨'V', by decide, _, rfl⟩

/-- The text from the average on opens with its letter or with that of the points. -/
theorem Opens.averagingPart {tail : List Char} (h : Opens ['F', 'V', 'Q'] tail)
    (averaged : Option Averaging) :
    Opens ['A', 'F', 'V', 'Q'] (averagingPart averaged ++ tail) := by
  match averaged with
  | none => exact h.mono (by decide)
  | some .cell => exact ⟨'A', by decide, _, rfl⟩
  | some .facet => exact ⟨'A', by decide, _, rfl⟩

/-- The text from the derivatives on opens with its letter or with one of those behind. -/
theorem Opens.derivativePart {tail : List Char} (h : Opens ['A', 'F', 'V', 'Q'] tail)
    (frame : Frame) (derivatives : List Nat) :
    Opens ['D', 'G', 'A', 'F', 'V', 'Q'] (derivativePart frame derivatives ++ tail) := by
  unfold WeakForm.derivativePart
  split
  · exact h.mono (by decide)
  · cases frame with
    | reference => exact ⟨'D', by decide, _, rfl⟩
    | physical => exact ⟨'G', by decide, _, rfl⟩

/-- The text from the component on opens with its letter or with one of those behind. -/
theorem Opens.componentPart {tail : List Char} (h : Opens ['D', 'G', 'A', 'F', 'V', 'Q'] tail)
    (component : Option Nat) :
    Opens ['C', 'D', 'G', 'A', 'F', 'V', 'Q'] (componentPart component ++ tail) := by
  cases component with
  | none => exact h.mono (by decide)
  | some c => exact ⟨'C', by decide, _, rfl⟩

/-- Every part opens with an underscore. -/
theorem Opens.eq_cons {letters text : List Char} (h : Opens letters text) :
    ∃ rest, text = '_' :: rest := by
  obtain ⟨c, -, rest, rfl⟩ := h
  exact ⟨c :: rest, rfl⟩

/-- Digits end where the next part begins. -/
theorem Opens.digits_append {letters letters' xs xs' ys ys' : List Char} (hys : Opens letters ys)
    (hys' : Opens letters' ys') (hxs : ∀ c ∈ xs, c.isDigit) (hxs' : ∀ c ∈ xs', c.isDigit)
    (h : xs ++ ys = xs' ++ ys') : xs = xs' ∧ ys = ys' := by
  obtain ⟨rest, rfl⟩ := hys.eq_cons
  obtain ⟨rest', rfl⟩ := hys'.eq_cons
  obtain ⟨hruns, hrest⟩ := WeakForm.digits_append rfl hxs hxs' h
  exact ⟨hruns, by rw [hrest]⟩

/-! ## Reading a name -/

/-- Equal texts have equal averages. -/
theorem averagingPart_append {averaged averaged' : Option Averaging} {tail : List Char}
    (h : averagingPart averaged ++ tail = averagingPart averaged' ++ tail) :
    averaged = averaged' := by
  have hparts : averagingPart averaged = averagingPart averaged' := List.append_cancel_right h
  match averaged, averaged' with
  | none, none => rfl
  | some .cell, some .cell => rfl
  | some .facet, some .facet => rfl
  | none, some .cell | none, some .facet | some .cell, none | some .facet, none
  | some .cell, some .facet | some .facet, some .cell => exact absurd hparts (by decide)

/-- The derivatives of two names have the same digits in the same frame, or there are none. -/
def SameDigits (frame : Frame) (derivatives : List Nat) (frame' : Frame)
    (derivatives' : List Nat) : Prop :=
  derivatives.all (· == 0) ∧ derivatives'.all (· == 0) ∨
    frame = frame' ∧ countDigits derivatives = countDigits derivatives'

/-- Equal texts have derivatives that are written alike. -/
theorem derivativePart_append {frame frame' : Frame} {derivatives derivatives' : List Nat}
    {tail tail' : List Char} (ht : Opens ['A', 'F', 'V', 'Q'] tail)
    (ht' : Opens ['A', 'F', 'V', 'Q'] tail')
    (h : derivativePart frame derivatives ++ tail = derivativePart frame' derivatives' ++ tail') :
    SameDigits frame derivatives frame' derivatives' ∧ tail = tail' := by
  unfold derivativePart at h
  by_cases hzero : derivatives.all (· == 0) <;> by_cases hzero' : derivatives'.all (· == 0)
  · rw [if_pos hzero, if_pos hzero'] at h
    exact ⟨.inl ⟨hzero, hzero'⟩, h⟩
  · -- only one of the names has the part
    rw [if_pos hzero, if_neg hzero'] at h
    cases frame' with
    | reference => exact absurd h (ht.ne (by decide))
    | physical => exact absurd h (ht.ne (by decide))
  · rw [if_neg hzero, if_pos hzero'] at h
    cases frame with
    | reference => exact absurd h.symm (ht'.ne (by decide))
    | physical => exact absurd h.symm (ht'.ne (by decide))
  -- both names have the part, whose letter tells the frame
  · rw [if_neg hzero, if_neg hzero', List.append_assoc, List.append_assoc] at h
    have hsame : frame = frame' ∧
        countDigits derivatives ++ tail = countDigits derivatives' ++ tail' := by
      match frame, frame' with
      | .reference, .reference => exact ⟨rfl, List.append_cancel_left h⟩
      | .physical, .physical => exact ⟨rfl, List.append_cancel_left h⟩
      | .reference, .physical =>
        have hletter : 'D' = 'G' := (List.cons.inj (List.cons.inj h).2).1
        exact absurd hletter (by decide)
      | .physical, .reference =>
        have hletter : 'G' = 'D' := (List.cons.inj (List.cons.inj h).2).1
        exact absurd hletter (by decide)
    obtain ⟨hruns, htail⟩ := ht.digits_append ht' (fun _ hc => isDigit_of_mem_countDigits hc)
      (fun _ hc => isDigit_of_mem_countDigits hc) hsame.2
    exact ⟨.inr ⟨hsame.1, hruns⟩, htail⟩

/-- Equal texts have equal components. -/
theorem componentPart_append {component component' : Option Nat} {tail tail' : List Char}
    (ht : Opens ['D', 'G', 'A', 'F', 'V', 'Q'] tail)
    (ht' : Opens ['D', 'G', 'A', 'F', 'V', 'Q'] tail')
    (h : componentPart component ++ tail = componentPart component' ++ tail') :
    component = component' ∧ tail = tail' := by
  match component, component' with
  | none, none => exact ⟨rfl, h⟩
  | none, some c => exact absurd h (ht.ne (by decide))
  | some c, none => exact absurd h.symm (ht'.ne (by decide))
  | some c, some c' =>
    have hrest := (List.cons.inj (List.cons.inj h).2).2
    obtain ⟨hruns, htail⟩ := ht.digits_append ht' (fun _ hc => isDigit_of_mem_toString hc)
      (fun _ hc => isDigit_of_mem_toString hc) hrest
    exact ⟨by rw [toString_nat_injective hruns], htail⟩

/-- **A table name tells** ordinal, component, averaging and the digits of the derivatives. -/
theorem tableName_tells {ordinal ordinal' : Nat} {component component' : Option Nat}
    {frame frame' : Frame} {derivatives derivatives' : List Nat}
    {averaged averaged' : Option Averaging} {entity : EntityType} {points : Nat}
    (h : tableName ordinal component frame derivatives averaged entity points =
      tableName ordinal' component' frame' derivatives' averaged' entity points) :
    ordinal = ordinal' ∧ component = component' ∧
      SameDigits frame derivatives frame' derivatives' ∧ averaged = averaged' := by
  have hlists := congrArg String.toList h
  -- the two letters in front are those of every name
  rw [toList_tableName, toList_tableName] at hlists
  have hend := opens_pointsPart entity points
  have hrest := (List.cons.inj (List.cons.inj hlists).2).2
  -- from left to right, each part ends where the next begins
  obtain ⟨hordinal, hrest⟩ := Opens.digits_append
    (((hend.averagingPart averaged).derivativePart frame derivatives).componentPart component)
    (((hend.averagingPart averaged').derivativePart frame' derivatives').componentPart component')
    (fun _ hc => isDigit_of_mem_toString hc) (fun _ hc => isDigit_of_mem_toString hc) hrest
  obtain ⟨hcomponent, hrest⟩ := componentPart_append
    ((hend.averagingPart averaged).derivativePart frame derivatives)
    ((hend.averagingPart averaged').derivativePart frame' derivatives') hrest
  obtain ⟨hderivatives, hrest⟩ := derivativePart_append (hend.averagingPart averaged)
    (hend.averagingPart averaged') hrest
  exact ⟨toString_nat_injective hordinal, hcomponent, hderivatives, averagingPart_append hrest⟩

/-! ## The end of a name -/

/-- The name of a table at so many points. -/
def OfPoints (points : Nat) (name : String) : Prop :=
  ∃ front, name.toList = front ++ 'Q' :: (toString points).toList

/-- A table name is one at its number of points. -/
theorem ofPoints_tableName (ordinal : Nat) (component : Option Nat) (frame : Frame)
    (derivatives : List Nat) (averaged : Option Averaging) (entity : EntityType) (points : Nat) :
    OfPoints points (tableName ordinal component frame derivatives averaged entity points) := by
  refine ⟨'F' :: 'E' :: ((toString ordinal).toList ++ (componentPart component ++
    (derivativePart frame derivatives ++ (averagingPart averaged ++
      (entity.suffix.toList ++ ['_']))))), ?_⟩
  rw [toList_tableName, pointsPart]
  simp only [List.cons_append, List.append_assoc, List.nil_append]

/-- **A table name tells the number of points.** -/
theorem OfPoints.unique {points points' : Nat} {name : String} (h : OfPoints points name)
    (h' : OfPoints points' name) : points = points' := by
  obtain ⟨front, hname⟩ := h
  obtain ⟨front', hname'⟩ := h'
  have hdigit : ∀ (n : Nat), ∀ c ∈ (toString n).toList.reverse, c.isDigit :=
    fun n c hc => isDigit_of_mem_toString (List.mem_reverse.mp hc)
  -- read from the end, the run of digits is the number
  have hends := congrArg List.reverse (hname.symm.trans hname')
  simp only [List.reverse_append, List.reverse_cons, List.append_assoc, List.singleton_append]
    at hends
  obtain ⟨hruns, -⟩ := digits_append rfl (hdigit points) (hdigit points') hends
  exact toString_nat_injective (List.reverse_inj.mp hruns)

/-- Two derivatives along the first direction, and one along the second. -/
example : tableName 0 (some 1) .reference [2, 1] (some .cell) .facet 3 =
    "FE0_C1_D21_AC_F_Q3" := by
  decide +kernel

end WeakForm
