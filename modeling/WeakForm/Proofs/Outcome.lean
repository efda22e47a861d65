import Mathlib.Data.List.Forall2
import Mathlib.Data.List.Induction
import WeakForm.Error

/-!
# Runs of computations that can fail

A computation that can fail ends without an error exactly if each of its parts does. Otherwise
its error is that of a part.

* `bind_eq_ok` — a sequence of two computations;
* `mapM_eq_ok` — the same computation on every item of a list;
* `exists_bind`, `exists_mapM` — a sequence ends if its parts do, and a computation ends on a
  list if it ends on every item;
* `mem_of_mapM`, `getElem?_of_mapM` — every result is the result of an item;
* `flatMapM_eq_ok` — the results of all items, one after the other;
* `item_of_done` — the item that a pass comes to;
* `foldl_induct`, `foldlM_ok_induct` — what every step of a fold keeps holds at its end;
* `lift_eq_ok` — a checked construction within a pass;
* `map_eq_error`, `bind_eq_error`, `exists_of_mapM_error`, `lift_eq_error` — the errors of
  computations;
* `toOption_eq_some`, `toOption_bind`, `toOption_lift` — results without their errors.
-/

namespace WeakForm

variable {ε α β : Type}

/-- A composition succeeds when both steps do. -/
theorem bind_eq_ok {x : Except ε α} {f : α → Except ε β} {b : β} :
    x >>= f = .ok b ↔ ∃ a, x = .ok a ∧ f a = .ok b := by
  cases x with
  | error e =>
    constructor
    · intro h
      cases h
    · rintro ⟨a, h, -⟩
      cases h
  | ok a =>
    constructor
    · intro h
      exact ⟨a, rfl, h⟩
    · rintro ⟨a', h, h'⟩
      cases h
      exact h'

/-- A mapped outcome succeeds when the outcome does. -/
theorem map_eq_ok {x : Except ε α} {f : α → β} {b : β} :
    f <$> x = .ok b ↔ ∃ a, x = .ok a ∧ f a = b := by
  cases x with
  | error e =>
    constructor
    · intro h
      cases h
    · rintro ⟨a, h, -⟩
      cases h
  | ok a =>
    constructor
    · intro h
      exact ⟨a, rfl, Except.ok.inj h⟩
    · rintro ⟨a', h, rfl⟩
      cases h
      rfl

/-- Item by item, the results are those of the computation. -/
theorem mapM_eq_ok {f : α → Except ε β} {as : List α} {bs : List β} :
    as.mapM f = .ok bs ↔ List.Forall₂ (fun a b => f a = .ok b) as bs := by
  induction as generalizing bs with
  | nil =>
    rw [List.mapM_nil, List.forall₂_nil_left_iff]
    constructor
    · intro h
      cases h
      rfl
    · rintro rfl
      rfl
  | cons a as ih =>
    rw [List.mapM_cons, bind_eq_ok, List.forall₂_cons_left_iff]
    constructor
    -- the first item and then the others, by the induction hypothesis
    · rintro ⟨b, hb, h⟩
      obtain ⟨bs', hbs, h⟩ := bind_eq_ok.mp h
      cases h
      exact ⟨b, bs', hb, ih.mp hbs, rfl⟩
    · rintro ⟨b, bs', hb, hbs, rfl⟩
      exact ⟨b, hb, bind_eq_ok.mpr ⟨bs', ih.mpr hbs, rfl⟩⟩

/-- Of two related lists, every item on the right is related to one on the left. -/
theorem exists_left_of_mem {P : α → β → Prop} {as : List α} {bs : List β}
    (h : List.Forall₂ P as bs) {b : β} (hb : b ∈ bs) : ∃ a ∈ as, P a b := by
  induction h with
  | nil => cases hb
  | cons hab _ ih =>
    rcases List.mem_cons.mp hb with rfl | hb
    · exact ⟨_, List.mem_cons_self, hab⟩
    · obtain ⟨a, ha, hp⟩ := ih hb
      exact ⟨a, List.mem_cons_of_mem _ ha, hp⟩

/-- Of two related lists, the items at one place are related. -/
theorem exists_right_of_getElem? {P : α → β → Prop} {as : List α} {bs : List β}
    (h : List.Forall₂ P as bs) {k : Nat} {a : α} (hk : as[k]? = some a) :
    ∃ b, bs[k]? = some b ∧ P a b := by
  induction h generalizing k with
  | nil => cases hk
  | @cons a' b' as bs hab _ ih =>
    cases k with
    | zero =>
      obtain rfl : a' = a := by simpa using hk
      exact ⟨b', rfl, hab⟩
    | succ k => exact ih (by simpa using hk)

/-- A relation between lists is weakened on the members. -/
theorem forall₂_imp_of_mem {P Q : α → β → Prop} {as : List α} {bs : List β}
    (h : List.Forall₂ P as bs) (himp : ∀ a ∈ as, ∀ b, P a b → Q a b) : List.Forall₂ Q as bs := by
  induction h with
  | nil => exact .nil
  | cons hab _ ih =>
    refine .cons (himp _ List.mem_cons_self _ hab) (ih fun a ha => ?_)
    exact himp a (List.mem_cons_of_mem _ ha)

/-- Items that determine what they are related to. -/
theorem eq_map_of_forall₂ {P : α → β → Prop} {g : α → β} {as : List α} {bs : List β}
    (h : List.Forall₂ P as bs) (hg : ∀ a b, P a b → b = g a) : bs = as.map g := by
  induction h with
  | nil => rfl
  | cons hab _ ih => rw [hg _ _ hab, ih, List.map_cons]

theorem mem_of_mapM {f : α → Except ε β} {as : List α} {bs : List β} (h : as.mapM f = .ok bs)
    {b : β} (hb : b ∈ bs) : ∃ a ∈ as, f a = .ok b :=
  exists_left_of_mem (mapM_eq_ok.mp h) hb

theorem length_of_mapM {f : α → Except ε β} {as : List α} {bs : List β}
    (h : as.mapM f = .ok bs) : bs.length = as.length :=
  (mapM_eq_ok.mp h).length_eq.symm

/-- The result at a place is that of the item at the place. -/
theorem getElem?_of_mapM {f : α → Except ε β} {as : List α} {bs : List β} {k : Nat} {a : α}
    (h : as.mapM f = .ok bs) (hk : as[k]? = some a) : ∃ b, bs[k]? = some b ∧ f a = .ok b :=
  exists_right_of_getElem? (mapM_eq_ok.mp h) hk

/-- A computation that ends on every item of a list ends on the list. -/
theorem exists_mapM {γ : Type} {f : α → Except ε β} {Q : γ → β → Prop} {as : List α}
    {cs : List γ} (h : List.Forall₂ (fun a c => ∃ b, f a = .ok b ∧ Q c b) as cs) :
    ∃ bs, as.mapM f = .ok bs ∧ List.Forall₂ Q cs bs := by
  induction h with
  | nil => exact ⟨[], rfl, .nil⟩
  | cons hac _ ih =>
    obtain ⟨b, hb, hq⟩ := hac
    obtain ⟨bs, hbs, hall⟩ := ih
    exact ⟨b :: bs, mapM_eq_ok.mpr (.cons hb (mapM_eq_ok.mp hbs)), .cons hq hall⟩

/-- The results of all items, one after the other. -/
theorem flatMapM_eq_map (f : α → Except ε (List β)) (as : List α) :
    as.flatMapM f = List.flatten <$> as.mapM f := by
  induction as with
  | nil => rfl
  | cons a as ih =>
    rw [List.flatMapM_cons, List.mapM_cons, ih]
    cases f a with
    | error e => rfl
    | ok row => cases as.mapM f <;> rfl

/-- A pass that gives rows joins them. -/
theorem flatMapM_eq_ok {f : α → Except ε (List β)} {as : List α} {bs : List β} :
    as.flatMapM f = .ok bs ↔ ∃ rows, as.mapM f = .ok rows ∧ bs = rows.flatten := by
  rw [flatMapM_eq_map, map_eq_ok]
  exact exists_congr fun rows => and_congr_right fun _ => eq_comm

/-- The item that a pass over an array with places comes to, when some items are done. -/
theorem item_of_done {items : Array α} {done : List (α × Nat)} {x : α × Nat}
    (h : done ++ [x] <+: items.toList.zipIdx) :
    items[done.length]? = some x.1 ∧ x.2 = done.length := by
  obtain ⟨rest, hrest⟩ := h
  have hx : items.toList.zipIdx[done.length]? = some x := by simp [← hrest]
  rw [List.getElem?_zipIdx, Nat.zero_add, Option.map_eq_some_iff] at hx
  obtain ⟨a, ha, rfl⟩ := hx
  exact ⟨by rwa [Array.getElem?_toList] at ha, rfl⟩

/-- The item that a pass over an array comes to, when the items from it on are left. -/
theorem item_of_drop {items : Array α} {k : Nat} {x : α} {rest : List α}
    (h : items.toList.drop k = x :: rest) :
    items[k]? = some x ∧ items.toList.drop (k + 1) = rest := by
  constructor
  · rw [← Array.getElem?_toList, ← List.head?_drop, h]
    rfl
  · rw [← List.tail_drop, h]
    rfl

/-- What holds before a fold, and is carried over by each of its steps, holds for all items
at the end. -/
theorem foldl_induct {f : β → α → β} {P : List α → β → Prop} {items : List α} {b₀ : β}
    (h₀ : P [] b₀)
    (step : ∀ (done : List α) (x : α) (b : β), done ++ [x] <+: items → P done b →
      P (done ++ [x]) (f b x)) : P items (items.foldl f b₀) := by
  induction items using List.reverseRecOn with
  | nil => exact h₀
  | append_singleton items x ih =>
    have hinit : P items (items.foldl f b₀) :=
      ih fun done y b hd => step done y b (hd.trans (List.prefix_append _ _))
    rw [List.foldl_concat]
    exact step items x _ List.prefix_rfl hinit

/-- The same for a fold that ends without an error. -/
theorem foldlM_ok_induct {f : β → α → Except ε β} {P : List α → β → Prop} {items : List α}
    {b₀ b : β} (h₀ : P [] b₀)
    (step : ∀ (done : List α) (x : α) (b₁ b₂ : β), done ++ [x] <+: items → P done b₁ →
      f b₁ x = .ok b₂ → P (done ++ [x]) b₂)
    (h : items.foldlM f b₀ = .ok b) : P items b := by
  -- from the end, since what holds is about the items done before
  induction items using List.reverseRecOn generalizing b with
  | nil =>
    cases h
    exact h₀
  | append_singleton items x ih =>
    rw [List.foldlM_append] at h
    obtain ⟨b₁, hinit, h⟩ := bind_eq_ok.mp h
    rw [List.foldlM_cons] at h
    obtain ⟨b₂, hx, h⟩ := bind_eq_ok.mp h
    cases h
    -- the induction hypothesis is about the items before the last
    have hP : P items b₁ :=
      ih (fun done y c₁ c₂ hd => step done y c₁ c₂ (hd.trans (List.prefix_append _ _))) hinit
    exact step items x b₁ b List.prefix_rfl hP hx

/-- A checked construction as a step of a pass. -/
theorem lift_eq_ok {R : Type} {x : Except (Breach R) α} {a : α} :
    (liftM x : Result R α) = .ok a ↔ x = .ok a := by
  cases x with
  | error b =>
    constructor <;> intro h <;> cases h
  | ok a' =>
    constructor <;> intro h <;> cases h <;> rfl

/-! ## Runs that end with an error -/

/-- Mapping keeps the error. -/
theorem map_eq_error {x : Except ε α} {f : α → β} {e : ε} : f <$> x = .error e ↔ x = .error e := by
  cases x with
  | error e' =>
    constructor
    · intro h
      cases h
      rfl
    · intro h
      cases h
      rfl
  | ok a =>
    constructor
    · intro h
      cases h
    · intro h
      cases h

/-- A composition fails when the first step does or the second one does on its result. -/
theorem bind_eq_error {x : Except ε α} {f : α → Except ε β} {e : ε} :
    x >>= f = .error e ↔ x = .error e ∨ ∃ a, x = .ok a ∧ f a = .error e := by
  cases x with
  | error e' =>
    constructor
    · intro h
      cases h
      exact .inl rfl
    · rintro (h | ⟨a, h, -⟩)
      · cases h
        rfl
      · cases h
  | ok a =>
    constructor
    · exact fun h => .inr ⟨a, rfl, h⟩
    · rintro (h | ⟨a', h, h'⟩)
      · cases h
      · cases h
        exact h'

/-- The error is that of an item. -/
theorem exists_of_mapM_error {f : α → Except ε β} {as : List α} {e : ε}
    (h : as.mapM f = .error e) : ∃ a ∈ as, f a = .error e := by
  induction as with
  | nil => cases h
  | cons a as ih =>
    rw [List.mapM_cons] at h
    rcases bind_eq_error.mp h with ha | ⟨b, -, h⟩
    -- the first item fails
    · exact ⟨a, List.mem_cons_self, ha⟩
    -- or one of the others does
    · rcases bind_eq_error.mp h with hrest | ⟨bs, -, h⟩
      · obtain ⟨x, hx, he⟩ := ih hrest
        exact ⟨x, List.mem_cons_of_mem _ hx, he⟩
      · cases h

/-- A pass that gives rows fails on one of its items. -/
theorem exists_of_flatMapM_error {f : α → Except ε (List β)} {as : List α} {e : ε}
    (h : as.flatMapM f = .error e) : ∃ a ∈ as, f a = .error e := by
  rw [flatMapM_eq_map, map_eq_error] at h
  exact exists_of_mapM_error h

/-- The error of a checked construction within a pass is the rule that was broken. -/
theorem lift_eq_error {R : Type} {x : Except (Breach R) α} {e : Error R} :
    (liftM x : Result R α) = .error e ↔ ∃ b, x = .error b ∧ e = .breach b := by
  cases x with
  | error b =>
    constructor
    · intro h
      cases h
      exact ⟨b, rfl, rfl⟩
    · rintro ⟨b', h, rfl⟩
      cases h
      rfl
  | ok a =>
    constructor
    · intro h
      cases h
    · rintro ⟨b, h, -⟩
      cases h

/-! ## Results without their errors -/

theorem toOption_eq_some {x : Except ε α} {a : α} : x.toOption = some a ↔ x = .ok a := by
  cases x with
  | error e => constructor <;> intro h <;> cases h
  | ok a' => constructor <;> intro h <;> cases h <;> rfl

theorem toOption_bind (x : Except ε α) (f : α → Except ε β) :
    (x >>= f).toOption = x.toOption.bind fun a => (f a).toOption := by
  cases x <;> rfl

theorem toOption_lift {R : Type} (x : Except (Breach R) α) :
    (liftM x : Result R α).toOption = x.toOption := by
  cases x <;> rfl

/-- A computation that ends on every item of a list ends on the list. -/
theorem exists_mapM_of_forall {f : α → Except ε β} {as : List α}
    (h : ∀ a ∈ as, ∃ b, f a = .ok b) : ∃ bs, as.mapM f = .ok bs := by
  have hall : List.Forall₂ (fun a _ => ∃ b, f a = .ok b ∧ True) as as :=
    List.forall₂_same.mpr fun a ha => (h a ha).imp fun _ hb => ⟨hb, trivial⟩
  obtain ⟨bs, hbs, -⟩ := exists_mapM hall
  exact ⟨bs, hbs⟩

/-- A pass that gives rows succeeds when it does on every item. -/
theorem exists_flatMapM_of_forall {f : α → Except ε (List β)} {as : List α}
    (h : ∀ a ∈ as, ∃ bs, f a = .ok bs) : ∃ bs, as.flatMapM f = .ok bs := by
  obtain ⟨rows, hrows⟩ := exists_mapM_of_forall h
  exact ⟨rows.flatten, flatMapM_eq_ok.mpr ⟨rows, hrows, rfl⟩⟩

/-- A sequence ends if its first computation does, and the second on what it ends with. -/
theorem exists_bind {x : Except ε α} {f : α → Except ε β} (hx : ∃ a, x = .ok a)
    (hf : ∀ a, x = .ok a → ∃ b, f a = .ok b) : ∃ b, x >>= f = .ok b := by
  obtain ⟨a, ha⟩ := hx
  obtain ⟨b, hb⟩ := hf a ha
  exact ⟨b, bind_eq_ok.mpr ⟨a, ha, hb⟩⟩

end WeakForm
